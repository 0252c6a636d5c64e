import Microcsp.Library.Transition
import Microcsp.Library.LinkedFifo
import Microcsp.Steps
import Microcsp.Current
import Microcsp.Masking
import Microcsp.Nesting
import Microcsp.Arming
import Microcsp.Queue
import Microcsp.Scheduler
import Microcsp.Representation
import Microcsp.Orderly
import Microcsp.Refinement
import Microcsp.Ownership
import Microcsp.Termination
import Microcsp.Quiet
import Microcsp.Ranking
import Microcsp.Preemption
import Microcsp.Release
import Microcsp.TimerQueue
import Microcsp.Library.Carving
import Microcsp.Allocation
import Microcsp.Clock
import Microcsp.Handlers
import Microcsp.Library.Interference
import Microcsp.Alternation
import Microcsp.Selection
import Microcsp.Fairness
import Microcsp.Partner
import Microcsp.Registration
import Microcsp.Standing
import Microcsp.Rendezvous
import Microcsp.Exchange
import Microcsp.Missed
import Microcsp.Attendance
import Microcsp.Account
import Microcsp.Lookup
import Microcsp.Alignment
import Microcsp.Software
import Microcsp.ReadyQueues
import Microcsp.Library.Walk
import Microcsp.TimerLinks
import Microcsp.Expiry
import Microcsp.Readying
import Microcsp.Indices
import Microcsp.Cooperation
import Microcsp.Transfers
import Microcsp.Library.Dataflow
import Microcsp.Programs
import Microcsp.Lagging
import Microcsp.Confluence
import Microcsp.Rest
import Microcsp.Turns
import Microcsp.Idle
import Microcsp.Records
import Microcsp.Choiceless
import Microcsp.Commstime
import Microcsp.Stages
import Microcsp.Library.Descent
import Microcsp.Latency
